import ContractTree.Proofs.Idempotence
import ContractTree.Proofs.Verdict

/-!
What the pass makes of the declarations. The body of the module is walked as a queue, at whose end the getters are
put; since a getter refers to no storage and declares nothing, it comes out of the queue as it went in, and the
body is afterwards what it was, with the getters behind it (`Rooted.exists_getters`). So each public variable whose
declaration had no type of a slot gets one getter, in the order of the declarations, and each declaration has the
type of its slot (`Lowering.run_getters`).
-/

namespace ContractTree

namespace Ty

/-- The keys of nested mappings, put around the type that they lead to, give the type back. -/
theorem foldr_levelKeys (t : Ty) : t.levelKeys.foldr mapping t.levelValue = t := by
  fun_induction levelKeys t with
  | case1 key value ih => rw [List.foldr_cons, levelValue, ih]
  | case2 t h => rw [List.foldr_nil, levelValue.eq_2 t h]

theorem levelValue_ne_mapping (t key value : Ty) : t.levelValue ≠ .mapping key value := by
  fun_induction levelValue t with
  | case1 _ _ ih => exact ih
  | case2 t h => exact h key value

/-- What the keys and the value of a slot are for a type that is none of a slot. -/
theorem slot_levels {t : Ty} (h : t.isSlot = false) :
    t.slotKeys.foldr mapping t.slotValue = t ∧ ∀ key value, t.slotValue ≠ .mapping key value := by
  have hkeys : t.slotKeys = t.levelKeys := by
    unfold slotKeys
    split
    · cases h
    · rfl
  have hvalue : t.slotValue = t.levelValue := by
    unfold slotValue
    split
    · cases h
    · rfl
  rw [hkeys, hvalue]
  exact ⟨t.foldr_levelKeys, t.levelValue_ne_mapping⟩

theorem slot_of_isSlot {t : Ty} (h : t.isSlot = true) : t.slot = t := by
  unfold isSlot at h
  split at h
  · rfl
  · cases h

end Ty

/-! ## The queue -/

/-- A getter comes out of the queue as it went in. -/
theorem DeclWalked.eq_of_getter {c : Catalog} {ν : NodeId} {names : List String} {v : StorageVar} {g g' : Tree}
    {gs : List Tree} (h : DeclWalked c ν names g gs g') (hg : Getter v g) : gs = [] ∧ g' = g := by
  cases h with
  | kept hset hw => exact ⟨rfl, (List.cons.inj (hw.eq_of_clean (by simpa using hg.clean)).2).1⟩
  | declared hl =>
    obtain ⟨a, b, e, hl⟩ := hl
    cases hg
    cases hl

namespace Rooted

variable {c : Catalog} {ν : NodeId} {names : List String} {ds ds' : List Tree}

/-- The body of the module after the walk: what its declarations have become, and behind that the getters they ask
for. -/
theorem exists_getters (h : Rooted c ν names ds ds') : ∃ es gs, ds' = es ++ gs ∧
    List.Forall₂ (fun d e => ∃ names gs, DeclWalked c ν names d gs e) ds es ∧
    List.Forall₂ Getter (ds.filterMap (Tree.getterVar? c)) gs := by
  -- while the walk goes on, the getters that it has put at the end wait there
  have hqueue : ∀ {names : List String} {queue out : List Tree}, Rooted c ν names queue out →
      ∀ {ds waiting : List Tree} {vs : List StorageVar}, queue = ds ++ waiting → List.Forall₂ Getter vs waiting →
        ∃ es gs, out = es ++ gs ∧ List.Forall₂ (fun d e => ∃ names gs, DeclWalked c ν names d gs e) ds es ∧
          List.Forall₂ Getter (vs ++ ds.filterMap (Tree.getterVar? c)) gs := by
    intro names queue out h
    induction h with
    | nil =>
      intro ds waiting vs hq hvs
      obtain ⟨rfl, rfl⟩ := List.append_eq_nil_iff.1 hq.symm
      exact ⟨[], [], rfl, .nil, by simpa using hvs⟩
    | @cons names d d' gs queue out hd hrest ih =>
      intro ds waiting vs hq hvs
      cases ds with
      | nil =>
        cases hvs with
        | nil => cases hq
        | @cons v g vs waiting hg hvs =>
          obtain ⟨rfl, rfl⟩ := List.cons.inj hq
          obtain ⟨rfl, rfl⟩ := hd.eq_of_getter hg
          obtain ⟨es, gs, rfl, hes, hgs⟩ := @ih [] _ vs (List.append_nil _) hvs
          cases hes
          exact ⟨[], d' :: gs, rfl, .nil, .cons hg hgs⟩
      | cons d₀ ds =>
        obtain ⟨rfl, rfl⟩ := List.cons.inj hq
        have hnew : List.Forall₂ Getter (d.getterVar? c).toList gs := by
          rcases hd.getters with ⟨hv, rfl⟩ | ⟨v, g, hv, rfl, hg, -⟩
          · rw [hv]
            exact .nil
          · rw [hv]
            exact .cons hg .nil
        obtain ⟨es, gs', rfl, hes, hgs⟩ := ih (List.append_assoc ..) (List.rel_append hvs hnew)
        refine ⟨d' :: es, gs', rfl, .cons ⟨_, _, hd⟩ hes, ?_⟩
        rw [List.append_assoc] at hgs
        rw [List.filterMap_cons]
        cases hv : d.getterVar? c <;> simpa [hv] using hgs
  exact hqueue h (List.append_nil ds).symm .nil

end Rooted

/-- A walk that puts nothing in front keeps the tops of the trees. -/
theorem Walked.map_id {c : Catalog} {ν : NodeId} {ts ts' : List Tree} (h : Walked c ν false ts [] ts') :
    ts'.map Tree.id = ts.map Tree.id := by
  generalize hes : ([] : List Tree) = es, hb : false = inList at h
  induction h with
  | nil => rfl
  | rewrite ht hts => exact absurd (List.append_eq_nil_iff.1 hes.symm).1 ht.ne_nil
  | inner hr ht hh hb' ho hts _ _ _ ih => simp [ih (List.append_eq_nil_iff.1 hes.symm).2.symm hb]
  | stmt => cases hb

theorem DeclWalked.id {c : Catalog} {ν : NodeId} {names : List String} {d d' : Tree} {gs : List Tree}
    (h : DeclWalked c ν names d gs d') : d'.id = d.id := by
  cases h with
  | kept hset hw => simpa using hw.map_id
  | declared hl hv hty hgs hfree hw => simpa using hw.map_id

/-- The declaration of a variable. -/
theorem Tree.exists_of_stateVar? {d : Tree} {v : StorageVar} (h : d.stateVar? = some v) :
    ∃ ty name hs bs os, d = .node v.decl ty (.variableDecl v.isPublic false false) (name :: hs) bs os ∧
      ty.or name.ty = some v.declared := by
  unfold stateVar? at h
  split at h
  · obtain ⟨declared, hdecl, rfl⟩ := Option.map_eq_some_iff.1 h
    exact ⟨_, _, _, _, _, rfl, hdecl⟩
  · cases h

/-- What the declaration of a variable has become: it has the type of the slot, and so has its name, unless the
declaration had the type of a slot before. -/
theorem DeclWalked.slotTy {c : Catalog} {ν : NodeId} {names : List String} {d d' : Tree} {gs : List Tree}
    {v : StorageVar} (h : DeclWalked c ν names d gs d') (hvar : d.stateVar? = some v)
    (hv : c.declaredAt? d.id = some v) :
    d'.kind = d.kind ∧ d'.ty = some v.slotTy ∧ (d.ty.any Ty.isSlot = false → ∀ {target value isPublic},
      d.kind = .variableDecl target value isPublic false false → ∃ x ∈ d'.heads, x.id = target ∧
      x.ty = some v.slotTy) := by
  obtain ⟨ty, name, hs, bs, os, rfl, hdecl⟩ := Tree.exists_of_stateVar? hvar
  cases h with
  | kept hset hw =>
    obtain ⟨hs', bs', os', _, heq, hh⟩ := hw.inv_nil
    obtain ⟨rfl, -⟩ := List.cons.inj heq
    have hslot : ty.any Ty.isSlot = true := hset ⟨_, _, _, rfl⟩ v hv
    refine ⟨?_, ?_, fun hno => absurd hslot (by simpa using hno)⟩
    · simp only [Tree.kind, Tree.label_node, Tree.heads_node, hh.map_id]
      rfl
    · obtain ⟨t, rfl⟩ : ∃ t, ty = some t := Option.isSome_iff_exists.1 (Option.isSome_of_any hslot)
      obtain rfl : t = v.declared := by simpa using hdecl
      exact congrArg some (Ty.slot_of_isSlot hslot).symm
  | @declared _ _ v' _ hv' hty _ _ hw =>
    obtain rfl : v' = v := Option.some.inj (hv'.symm.trans hv)
    obtain ⟨hs', bs', os', _, heq, hh⟩ := hw.inv_nil
    obtain ⟨rfl, -⟩ := List.cons.inj heq
    simp only [Tree.declareSlot, Tree.heads_node] at hh
    refine ⟨?_, rfl, fun _ => ?_⟩
    · simp only [Tree.kind, Tree.declareSlot, Tree.label_node, Tree.heads_node, hh.map_id]
      simp [Label.kind]
    · obtain ⟨_, _, _, _, rfl, -⟩ := hh.inv_nil
      intro target value isPublic hkind
      obtain ⟨rfl, -⟩ := Kind.variableDecl.inj hkind
      exact ⟨_, List.mem_cons_self, by simp, Tree.ty_withTy⟩

namespace Lowering

variable {w w' : Workspace Progress} {m : NodeId}

/-- **What the pass makes of the declarations.** Let `m` be the only module in its tree, let its state variables
have different names, and let the pass come to its end. Then the body of `m` is what it was, with getters behind
it: in the order of the declarations one for each public variable whose declaration had no type of a slot (`Getter`
says what it is). Each declaration of a state variable has the type of the slot afterwards, and so has the name
that it declares, unless the declaration had the type of a slot before. The keys of the slot are those of the
mappings that the variable is declared with, outermost first, and its value is what these lead to, unless it is
declared with the type of a slot itself. -/
theorem run_getters (hs : w.store.Sound) (hv : w.store.verify m = .ok ())
    (honly : ∀ n ∈ w.store.preorder m, n.kind.isModule = true → n.id = m)
    (hnames : ((w.store.declaredVars m).map StorageVar.name).Nodup) (hrun : run m w = .ok () w') :
    (∃ body getters, w.store.kind? m = some (.module body) ∧ w'.store.kind? m = some (.module (body ++ getters)) ∧
      (body ++ getters).Nodup ∧
      List.Forall₂ (fun v g => ∃ t, w'.store.tree? g = some t ∧ Getter v t)
        ((w.store.declaredVars m).filter fun v => v.isPublic && !(w.store.ty? v.decl).any Ty.isSlot) getters) ∧
    ∀ decl ∈ w.store.children m, w.store.declaresState decl = true → ∃ v, w.store.stateVar? decl = some v ∧
      w'.store.kind? decl = w.store.kind? decl ∧ w'.store.ty? decl = some (.storage v.keys v.value) ∧
      (∀ target value isPublic, w.store.kind? decl = some (.variableDecl target value isPublic false false) →
        (w.store.ty? decl).any Ty.isSlot = false → w'.store.ty? target = some (.storage v.keys v.value)) ∧
      (v.declared.isSlot = false →
        v.keys.foldr Ty.mapping v.value = v.declared ∧ ∀ key value, v.value ≠ .mapping key value) := by
  obtain ⟨T, rfl, hf, hn, hT⟩ := (Store.verify_iff hs.nodup m).1 hv
  obtain ⟨ty, body, body', hbody, hran⟩ := exists_ran hs hf hn hT (hT.no_module hf hn honly) hrun
  generalize T.id = m at *
  subst hbody
  have h' := hran.has
  have hT' := h'.holds
  have hf' := h'.fits
  have hn' := h'.nodup
  have hcat := Store.catalogOf_eq hT hf hnames
  obtain ⟨es, gs, rfl, hes, hgs⟩ := hran.rooted.exists_getters
  rw [hcat] at hes hgs
  have hmap : es.map Tree.id = body.map Tree.id := by
    have hsame : List.Forall₂ (· = ·) (body.map Tree.id) (es.map Tree.id) := by
      rw [List.forall₂_map_left_iff, List.forall₂_map_right_iff]
      exact hes.imp fun d e ⟨_, _, he⟩ => he.id.symm
    exact (List.forall₂_eq_eq_eq ▸ hsame).symm
  have hkid : ∀ {d}, d ∈ es ++ gs → w'.store.Holds (some m) d ∧ d.Fits ∧ d.ids.Nodup := fun {d} hd =>
    have hmem : d ∈ (Tree.node m ty .module [] (es ++ gs) []).kids := by simpa using hd
    ⟨hT'.kid hmem, hf'.kid hmem, Tree.nodup_kid hn' hmem⟩
  refine ⟨⟨body.map Tree.id, gs.map Tree.id, hT.kind?, ?_, ?_, ?_⟩, ?_⟩
  · rw [← hmap, ← List.map_append]
    exact hT'.kind?
  · rw [← hmap, ← List.map_append]
    simpa using Tree.nodup_map_id_kids hn'
  · rw [List.forall₂_map_right_iff, ← Store.getterVars_eq hT hf hn hnames]
    rw [List.forall₂_iff_zip] at hgs ⊢
    refine ⟨hgs.1, fun {v g} hmem => ⟨g, ?_, hgs.2 hmem⟩⟩
    obtain ⟨h1, h2, h3⟩ := hkid (List.mem_append_right _ (List.of_mem_zip hmem).2)
    exact h1.tree?_eq h2 h3
  · intro decl hdecl hstate
    obtain ⟨v, hvar⟩ := Option.isSome_iff_exists.1 ((Store.declared_iff hT hf).2 hran.declarable decl hdecl hstate)
    obtain ⟨d, hd, rfl⟩ := List.mem_map.1 (show decl ∈ _ from hT.children hf ▸ hdecl)
    have hold := hT.kid hd
    obtain ⟨e, he, names, gs', hwalked⟩ : ∃ e ∈ es, ∃ names gs', DeclWalked (w.store.declaredVars m)
        w.store.nextId names d gs' e := by
      obtain ⟨k, hk, rfl⟩ := List.getElem_of_mem (show d ∈ body by simpa using hd)
      exact ⟨_, List.getElem_mem (hes.length_eq ▸ hk), hes.get hk (hes.length_eq ▸ hk)⟩
    have htree : d.stateVar? = some v := hold.stateVar?_eq (hf.kid hd) ▸ hvar
    obtain ⟨hkind, hty, hname⟩ :=
      hwalked.slotTy htree (Store.declaredAt?_of_stateVar? hT hf hn hnames (by simpa using hd) htree)
    obtain ⟨hnew, -, -⟩ := hkid (List.mem_append_left gs he)
    have hid := hwalked.id
    refine ⟨v, hvar, ?_, ?_, ?_, Ty.slot_levels⟩
    · rw [← hid, hnew.kind?, hkind, hid, hold.kind?]
    · rw [← hid, hnew.ty?, hty]
      rfl
    · intro target value isPublic htarget hslot
      rw [hold.ty?] at hslot
      obtain ⟨x, hx, rfl, hxty⟩ := hname hslot (Option.some.inj (hold.kind?.symm.trans htarget))
      rw [(hnew.kid (show x ∈ e.kids by simp [Tree.kids, hx])).ty?, hxty]
      rfl

/-- A contract with a public mapping of mappings, a public constant, and a public variable that has the type of a
slot already:
```
x: public(uint256)
k: public(constant(uint256)) = 1
m: public(HashMap[address, HashMap[uint256, bool]])
y: public(storage<[] => uint256>)
def f():
    return self.x
```
-/
def registry : Store :=
  .ofTree
    (.node ⟨0⟩ none .module [] [
      .node ⟨1⟩ (some (.uint 256)) (.variableDecl true false false) [.leaf ⟨2⟩ none (.name "x")] [] [],
      .node ⟨3⟩ (some (.uint 256)) (.variableDecl true true false) [.leaf ⟨4⟩ none (.name "k"),
        .leaf ⟨5⟩ none (.int 1)] [] [],
      .node ⟨6⟩ (some (.mapping .address (.mapping (.uint 256) .bool))) (.variableDecl true false false)
        [.leaf ⟨7⟩ none (.name "m")] [] [],
      .node ⟨8⟩ (some (.storage [] (.uint 256))) (.variableDecl true false false)
        [.leaf ⟨9⟩ none (.name "y")] [] [],
      .node ⟨10⟩ none (.functionDef "f" .external .view) []
        [.node ⟨11⟩ none .ret [.node ⟨12⟩ none (.member "x") [.leaf ⟨13⟩ none (.name "self")] [] []] [] []] []] [])
    ⟨14⟩

theorem run_getters_registry : ∃ w' x m, run ⟨0⟩ ⟨registry, {}⟩ = .ok () w' ∧
    w'.store.kind? ⟨0⟩ = some (.module [⟨1⟩, ⟨3⟩, ⟨6⟩, ⟨8⟩, ⟨10⟩, x, m]) ∧
    (∃ t, w'.store.tree? x = some t ∧ Getter ⟨"x", ⟨1⟩, .uint 256, true⟩ t) ∧
    (∃ t, w'.store.tree? m = some t ∧
      Getter ⟨"m", ⟨6⟩, .mapping .address (.mapping (.uint 256) .bool), true⟩ t) := by
  have hrun : ∃ w', run ⟨0⟩ ⟨registry, {}⟩ = .ok () w' := by decide +kernel
  obtain ⟨w', hrun⟩ := hrun
  have hs : registry.Sound := ⟨by decide, by decide, by decide⟩
  have hv : registry.verify ⟨0⟩ = .ok () := by decide +kernel
  have honly : ∀ n ∈ registry.preorder ⟨0⟩, n.kind.isModule = true → n.id = ⟨0⟩ := by decide
  have hnames : ((registry.declaredVars ⟨0⟩).map StorageVar.name).Nodup := by decide
  have hbody : registry.kind? ⟨0⟩ = some (.module [⟨1⟩, ⟨3⟩, ⟨6⟩, ⟨8⟩, ⟨10⟩]) := rfl
  have hvars : ((registry.declaredVars ⟨0⟩).filter fun v => v.isPublic && !(registry.ty? v.decl).any Ty.isSlot) =
      [⟨"x", ⟨1⟩, .uint 256, true⟩, ⟨"m", ⟨6⟩, .mapping .address (.mapping (.uint 256) .bool), true⟩] := rfl
  generalize registry = s at *
  obtain ⟨⟨body, getters, hk, hk', -, hgetters⟩, -⟩ := run_getters (w := ⟨s, {}⟩) hs hv honly hnames hrun
  rw [hvars] at hgetters
  obtain rfl : [⟨1⟩, ⟨3⟩, ⟨6⟩, ⟨8⟩, ⟨10⟩] = body := by
    rw [hbody] at hk
    exact Kind.module.inj (Option.some.inj hk)
  cases hgetters with
  | cons hx hrest =>
    cases hrest with
    | cons hm hrest =>
      cases hrest
      exact ⟨w', _, _, hrun, hk', hx, hm⟩

end Lowering

end ContractTree
